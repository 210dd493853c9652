import VerifiableLog.Proofs.Merkle.Growth
import VerifiableLog.Proofs.Merkle.Split

/-!
Roots over ranges. A stored node is the root over its complete subtree, so the hash that a tree
finds for a range of its leaves, stored or put together at the splits, is the root over the range.
A tree grown from nothing therefore answers as the plain recursion over its leaves does, whatever
the batches that they came in.
-/

namespace VerifiableLog.Merkle

def leafRange (leaves : List Digest) (start stop : Nat) : List Digest :=
  (leaves.take stop).drop start

theorem length_leafRange {leaves : List Digest} {stop : Nat} (start : Nat)
    (within : stop ≤ leaves.length) : (leafRange leaves start stop).length = stop - start := by
  rw [leafRange, List.length_drop, List.length_take_of_le within]

theorem take_leafRange {leaves : List Digest} {start stop count : Nat}
    (within : start + count ≤ stop) :
    (leafRange leaves start stop).take count = leafRange leaves start (start + count) := by
  rw [leafRange, leafRange, List.take_drop, List.take_take, Nat.min_eq_left within]

theorem drop_leafRange (leaves : List Digest) (start stop count : Nat) :
    (leafRange leaves start stop).drop count = leafRange leaves (start + count) stop := by
  rw [leafRange, leafRange, List.drop_drop]

theorem rootOf_leafRange {leaves : List Digest} {start stop : Nat} (within : stop ≤ leaves.length)
    (several : 2 ≤ stop - start) :
    rootOf (leafRange leaves start stop) =
      hashChildren (rootOf (leafRange leaves start (start + splitPoint (stop - start))))
        (rootOf (leafRange leaves (start + splitPoint (stop - start)) stop)) := by
  have bound := splitPoint_lt several
  have length := length_leafRange start within
  rw [rootOf_split (by omega), length, take_leafRange (by omega), drop_leafRange]

theorem getElem?_pairUp (hashes : List Digest) (index : Nat) :
    (pairUp hashes)[index]? =
      hashes[2 * index]?.bind fun left => hashes[2 * index + 1]?.map (hashChildren left) := by
  fun_induction pairUp hashes generalizing index with
  | case1 => simp
  | case2 single => simp
  | case3 left right rest ih =>
      cases index with
      | zero => simp
      | succ index => simpa [Nat.mul_succ] using ih index

def row : Nat → List Digest → List Digest
  | 0, leaves => leaves
  | level + 1, leaves => row level (pairUp leaves)

theorem row_succ (level : Nat) (leaves : List Digest) :
    row (level + 1) leaves = pairUp (row level leaves) := by
  induction level generalizing leaves with
  | zero => rfl
  | succ level ih => exact ih (pairUp leaves)

theorem row_nil (level : Nat) : row level [] = [] := by
  induction level with
  | zero => rfl
  | succ level ih => exact ih

theorem getElem?_levelsOf (leaves : List Digest) (level index : Nat) :
    ((levelsOf leaves)[level]?.bind fun nodes => nodes[index]?) = (row level leaves)[index]? := by
  induction level generalizing leaves with
  | zero =>
      by_cases empty : leaves = []
      · simp [empty, row]
      · simp [levelsOf_of_ne_nil empty, row]
  | succ level ih =>
      by_cases empty : leaves = []
      · simp [empty, row_nil]
      · rw [levelsOf_of_ne_nil empty, List.getElem?_cons_succ, ih]
        rfl

theorem rootOf_leafRange_leaf {leaves : List Digest} {index : Nat}
    (inside : index < leaves.length) :
    rootOf (leafRange leaves index (index + 1)) = leaves[index] := by
  rw [leafRange, ← List.take_drop, List.drop_eq_getElem_cons inside, List.take_succ_cons,
    List.take_zero, rootOf_singleton]

theorem rootOf_leafRange_node {leaves : List Digest} {level index : Nat}
    (complete : (index + 1) * 2 ^ (level + 1) ≤ leaves.length) :
    rootOf (leafRange leaves (index * 2 ^ (level + 1)) ((index + 1) * 2 ^ (level + 1))) =
      hashChildren
        (rootOf (leafRange leaves (2 * index * 2 ^ level) ((2 * index + 1) * 2 ^ level)))
        (rootOf (leafRange leaves ((2 * index + 1) * 2 ^ level)
          ((2 * index + 1 + 1) * 2 ^ level))) := by
  have positive := Nat.two_pow_pos level
  have start : index * 2 ^ (level + 1) = 2 * index * 2 ^ level := by
    rw [Nat.pow_succ', ← Nat.mul_assoc, Nat.mul_comm index 2]
  have stop : (index + 1) * 2 ^ (level + 1) = 2 * index * 2 ^ level + 2 * 2 ^ level := by
    rw [Nat.pow_succ', Nat.add_mul, Nat.one_mul, ← Nat.mul_assoc, Nat.mul_comm index 2]
  have middle : (2 * index + 1) * 2 ^ level = 2 * index * 2 ^ level + 2 ^ level := by
    rw [Nat.add_mul, Nat.one_mul]
  have last : (2 * index + 1 + 1) * 2 ^ level = 2 * index * 2 ^ level + 2 * 2 ^ level := by
    rw [Nat.add_assoc, Nat.add_mul]
  have width : 2 * index * 2 ^ level + 2 * 2 ^ level - 2 * index * 2 ^ level = 2 * 2 ^ level := by
    omega
  rw [stop] at complete
  rw [start, stop, middle, last, rootOf_leafRange complete (by omega), width,
    splitPoint_two_mul_two_pow]

theorem getElem?_row (leaves : List Digest) (level index : Nat) :
    (row level leaves)[index]? =
      if (index + 1) * 2 ^ level ≤ leaves.length then
        some (rootOf (leafRange leaves (index * 2 ^ level) ((index + 1) * 2 ^ level)))
      else none := by
  induction level generalizing index with
  | zero =>
      simp only [row, Nat.pow_zero, Nat.mul_one]
      split
      · rename_i inside
        rw [rootOf_leafRange_leaf inside, List.getElem?_eq_getElem inside]
      · rename_i outside
        exact List.getElem?_eq_none (by omega)
  | succ level ih =>
      have last : (2 * index + 1 + 1) * 2 ^ level = (index + 1) * 2 ^ (level + 1) := by
        rw [Nat.pow_succ', ← Nat.mul_assoc, Nat.mul_comm (index + 1) 2, Nat.mul_succ]
      have grows : (2 * index + 1) * 2 ^ level ≤ (2 * index + 1 + 1) * 2 ^ level :=
        Nat.mul_le_mul_right _ (by omega)
      rw [row_succ, getElem?_pairUp, ih, ih]
      by_cases complete : (index + 1) * 2 ^ (level + 1) ≤ leaves.length
      · rw [if_pos (by omega), if_pos (by omega), if_pos complete, rootOf_leafRange_node complete]
        rfl
      · rw [if_neg complete, if_neg (show ¬(2 * index + 1 + 1) * 2 ^ level ≤ _ by omega)]
        cases (if (2 * index + 1) * 2 ^ level ≤ leaves.length then
          some (rootOf (leafRange leaves (2 * index * 2 ^ level) ((2 * index + 1) * 2 ^ level)))
          else none) <;> rfl

namespace Accumulator

/-- The tree holds the node of every complete subtree, and no other. -/
theorem node?_ofLeaves (leaves : List Digest) (level index : Nat) :
    (ofLeaves leaves).node? level index =
      if (index + 1) * 2 ^ level ≤ leaves.length then
        some (rootOf (leafRange leaves (index * 2 ^ level) ((index + 1) * 2 ^ level)))
      else none := by
  rw [← getElem?_row, ← getElem?_levelsOf, node?, ofLeaves, List.getElem?_toArray]
  rfl

section

variable (tree : Accumulator) {start stop : Nat}

theorem rangeHash_of_empty (empty : stop - start = 0) :
    tree.rangeHash start stop = .ok emptyRoot := by
  rw [rangeHash]
  exact if_pos empty

theorem rangeHash_of_aligned (inhabited : stop - start ≠ 0)
    (aligned : 1 <<< Nat.log2 (stop - start) = stop - start ∧ start % (stop - start) = 0) :
    tree.rangeHash start stop =
      match tree.node? (Nat.log2 (stop - start)) (start / (stop - start)) with
      | some hash => .ok hash
      | none => .error (.missingNode (Nat.log2 (stop - start)) (start / (stop - start))) := by
  rw [rangeHash]
  cases found : tree.node? (Nat.log2 (stop - start)) (start / (stop - start)) <;>
    simp only [if_neg inhabited, if_pos aligned, found]

theorem rangeHash_of_unaligned (inhabited : stop - start ≠ 0)
    (unaligned : ¬(1 <<< Nat.log2 (stop - start) = stop - start ∧ start % (stop - start) = 0)) :
    tree.rangeHash start stop = do
      let left ← tree.rangeHash start (start + splitPoint (stop - start))
      let right ← tree.rangeHash (start + splitPoint (stop - start)) stop
      return hashChildren left right := by
  rw [rangeHash]
  simp only [if_neg inhabited, if_neg unaligned,
    dif_pos (two_le_of_not_complete inhabited unaligned)]

end

theorem aligned_range {start stop : Nat} (ordered : start ≤ stop)
    (aligned : 1 <<< Nat.log2 (stop - start) = stop - start ∧ start % (stop - start) = 0) :
    2 ^ Nat.log2 (stop - start) = stop - start ∧
      start / (stop - start) * (stop - start) = start ∧
      (start / (stop - start) + 1) * (stop - start) = stop := by
  have whole := Nat.div_add_mod' start (stop - start)
  rw [aligned.2, Nat.add_zero] at whole
  refine ⟨?_, whole, ?_⟩
  · rw [← Nat.one_shiftLeft]
    exact aligned.1
  · rw [Nat.add_mul, whole]
    omega

theorem rangeHash_ofLeaves {leaves : List Digest} {start stop : Nat} (ordered : start ≤ stop)
    (within : stop ≤ leaves.length) :
    (ofLeaves leaves).rangeHash start stop = .ok (rootOf (leafRange leaves start stop)) := by
  generalize countEq : stop - start = count
  induction count using Nat.strongRecOn generalizing start stop with
  | ind count ih =>
      by_cases none : stop - start = 0
      · have empty : leafRange leaves start stop = [] :=
          List.length_eq_zero_iff.mp (by rw [length_leafRange start within, none])
        rw [rangeHash_of_empty _ none, empty, rootOf_nil]
      by_cases aligned : 1 <<< Nat.log2 (stop - start) = stop - start ∧
          start % (stop - start) = 0
      · obtain ⟨power, place, next⟩ := aligned_range ordered aligned
        rw [rangeHash_of_aligned _ none aligned, node?_ofLeaves, power, place, next, if_pos within]
      · have several := two_le_of_not_complete none aligned
        have bound := splitPoint_lt several
        have positive := splitPoint_pos (stop - start)
        rw [rangeHash_of_unaligned _ none aligned,
          ih (splitPoint (stop - start)) (by omega) (by omega) (by omega) (by omega),
          ih (stop - start - splitPoint (stop - start)) (by omega) (by omega) within (by omega),
          rootOf_leafRange within several]
        rfl

theorem root_ofLeaves {leaves : List Digest} {treeSize : Nat} (reached : treeSize ≤ leaves.length) :
    (ofLeaves leaves).root treeSize = .ok (rootOf (leaves.take treeSize)) := by
  rw [root, checkSize, size_ofLeaves, if_neg (by omega)]
  exact rangeHash_ofLeaves (Nat.zero_le treeSize) reached

theorem root_ofLeaves_of_lt {leaves : List Digest} {treeSize : Nat}
    (beyond : leaves.length < treeSize) :
    (ofLeaves leaves).root treeSize = .error (.treeSizeOutOfRange treeSize leaves.length) := by
  rw [root, checkSize, size_ofLeaves, if_pos beyond]
  rfl

/-- A tree grown by batches of any sizes, planned or not, is the one that the plain recursion over
all leaves describes: in its size, its root at every size and every one of its nodes. All that is
asked of the batches is that a word of 64 bits can count their leaves. -/
theorem grow_exact (batches : List Batch)
    (fits : (batches.flatMap Batch.leaves).length < 2 ^ 64) :
    ∃ tree, grow batches = .ok tree ∧
      tree.size = (batches.flatMap Batch.leaves).length ∧
      (∀ treeSize, treeSize ≤ (batches.flatMap Batch.leaves).length →
        tree.root treeSize = .ok (rootOf ((batches.flatMap Batch.leaves).take treeSize))) ∧
      (∀ treeSize, (batches.flatMap Batch.leaves).length < treeSize →
        tree.root treeSize =
          .error (.treeSizeOutOfRange treeSize (batches.flatMap Batch.leaves).length)) ∧
      ∀ level index, tree.node? level index =
        if (index + 1) * 2 ^ level ≤ (batches.flatMap Batch.leaves).length then
          some (rootOf (leafRange (batches.flatMap Batch.leaves) (index * 2 ^ level)
            ((index + 1) * 2 ^ level)))
        else none := by
  refine ⟨ofLeaves (batches.flatMap Batch.leaves), grow_eq_ofLeaves fits, size_ofLeaves _, ?_, ?_,
    node?_ofLeaves _⟩
  · intro treeSize reached
    exact root_ofLeaves reached
  · intro treeSize beyond
    exact root_ofLeaves_of_lt beyond

theorem grow_exact_raggedBatches :
    ∃ tree, grow [.planned [hashLeaf [1]], .extended [], .extended [hashLeaf [2], hashLeaf [3]],
        .planned []] = .ok tree ∧
      tree.size = 3 ∧ tree.root 2 = .ok (rootOf [hashLeaf [1], hashLeaf [2]]) ∧
      tree.root 4 = .error (.treeSizeOutOfRange 4 3) ∧
      tree.node? 1 0 = some (rootOf [hashLeaf [1], hashLeaf [2]]) ∧ tree.node? 1 1 = none := by
  obtain ⟨tree, grown, size, within, beyond, node⟩ := grow_exact
    [.planned [hashLeaf [1]], .extended [], .extended [hashLeaf [2], hashLeaf [3]], .planned []]
    (by simp [Batch.leaves])
  exact ⟨tree, grown, size, within 2 (by simp [Batch.leaves]), beyond 4 (by simp [Batch.leaves]),
    node 1 0, node 1 1⟩

end Accumulator

end VerifiableLog.Merkle
