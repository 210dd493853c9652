import VerifiableLog.Merkle.Proof
import VerifiableLog.Proofs.Merkle.Range

/-!
Paths over a list of leaves. The hashes of an audit path and of a consistency path are those of the
sides that the walk down the splits leaves out. A tree that holds the leaves finds the same paths
from its stored nodes.
-/

namespace VerifiableLog.Merkle

/-- The siblings on the way from the leaf `index` to the root. -/
def siblingPath (index : Nat) (leaves : List Digest) : List Digest :=
  if _ : 2 ≤ leaves.length then
    let split := splitPoint leaves.length
    if index < split then siblingPath index (leaves.take split) ++ [rootOf (leaves.drop split)]
    else siblingPath (index - split) (leaves.drop split) ++ [rootOf (leaves.take split)]
  else []
termination_by leaves.length
decreasing_by
  · have bound := splitPoint_lt (show 2 ≤ leaves.length by assumption)
    rw [List.length_take]
    omega
  · have positive := splitPoint_pos leaves.length
    rw [List.length_drop]
    omega

theorem siblingPath_of_small {index : Nat} {leaves : List Digest} (few : leaves.length < 2) :
    siblingPath index leaves = [] := by
  rw [siblingPath, dif_neg (by omega)]

theorem siblingPath_of_lt_split {index : Nat} {leaves : List Digest} (several : 2 ≤ leaves.length)
    (before : index < splitPoint leaves.length) :
    siblingPath index leaves =
      siblingPath index (leaves.take (splitPoint leaves.length)) ++
        [rootOf (leaves.drop (splitPoint leaves.length))] := by
  rw [siblingPath, dif_pos several]
  exact if_pos before

theorem siblingPath_of_split_le {index : Nat} {leaves : List Digest} (several : 2 ≤ leaves.length)
    (behind : splitPoint leaves.length ≤ index) :
    siblingPath index leaves =
      siblingPath (index - splitPoint leaves.length) (leaves.drop (splitPoint leaves.length)) ++
        [rootOf (leaves.take (splitPoint leaves.length))] := by
  rw [siblingPath, dif_pos several]
  exact if_neg (by omega)

theorem exists_siblingPath_concat {leaves : List Digest} (several : 2 ≤ leaves.length)
    (index : Nat) : ∃ lower sibling, siblingPath index leaves = lower ++ [sibling] := by
  by_cases before : index < splitPoint leaves.length
  · exact ⟨_, _, siblingPath_of_lt_split several before⟩
  · exact ⟨_, _, siblingPath_of_split_le several (Nat.le_of_not_lt before)⟩

/-- The hashes that rebuild the root from its first leaves. These need no hash of their own as long
as they are the whole earlier tree. -/
def growthPath (first : Nat) (leaves : List Digest) (isEarlierTree : Bool) : List Digest :=
  if first = leaves.length then if isEarlierTree then [] else [rootOf leaves]
  else if _ : 2 ≤ leaves.length then
    let split := splitPoint leaves.length
    if first ≤ split then
      growthPath first (leaves.take split) isEarlierTree ++ [rootOf (leaves.drop split)]
    else growthPath (first - split) (leaves.drop split) false ++ [rootOf (leaves.take split)]
  else []
termination_by leaves.length
decreasing_by
  · have bound := splitPoint_lt (show 2 ≤ leaves.length by assumption)
    rw [List.length_take]
    omega
  · have positive := splitPoint_pos leaves.length
    rw [List.length_drop]
    omega

theorem growthPath_self (leaves : List Digest) (isEarlierTree : Bool) :
    growthPath leaves.length leaves isEarlierTree =
      if isEarlierTree then [] else [rootOf leaves] := by
  rw [growthPath, if_pos rfl]

theorem growthPath_of_le_split {first : Nat} {leaves : List Digest} (several : 2 ≤ leaves.length)
    (smaller : first < leaves.length) (within : first ≤ splitPoint leaves.length)
    (isEarlierTree : Bool) :
    growthPath first leaves isEarlierTree =
      growthPath first (leaves.take (splitPoint leaves.length)) isEarlierTree ++
        [rootOf (leaves.drop (splitPoint leaves.length))] := by
  rw [growthPath, if_neg (by omega), dif_pos several]
  exact if_pos within

theorem growthPath_of_split_lt {first : Nat} {leaves : List Digest}
    (smaller : first < leaves.length) (beyond : splitPoint leaves.length < first)
    (isEarlierTree : Bool) :
    growthPath first leaves isEarlierTree =
      growthPath (first - splitPoint leaves.length) (leaves.drop (splitPoint leaves.length)) false ++
        [rootOf (leaves.take (splitPoint leaves.length))] := by
  have positive := splitPoint_pos leaves.length
  rw [growthPath, if_neg (by omega), dif_pos (by omega)]
  exact if_neg (by omega)

namespace Accumulator

theorem auditPath_ofLeaves {leaves : List Digest} (index start stop : Nat) (behind : start ≤ index)
    (ordered : start ≤ stop) (within : stop ≤ leaves.length) :
    (ofLeaves leaves).auditPath index start stop =
      .ok (siblingPath (index - start) (leafRange leaves start stop)) := by
  generalize countEq : stop - start = count
  induction count using Nat.strongRecOn generalizing start stop with
  | ind count ih =>
      have length := length_leafRange start within
      by_cases several : 2 ≤ stop - start
      · have bound := splitPoint_lt several
        have positive := splitPoint_pos (stop - start)
        have inside : start + splitPoint (stop - start) ≤ stop := by omega
        have left := rangeHash_ofLeaves
          (Nat.le_add_right start (splitPoint (stop - start))) (Nat.le_trans inside within)
        have right := rangeHash_ofLeaves inside within
        rw [auditPath, dif_pos several]
        by_cases before : index < start + splitPoint (stop - start)
        · have lower := ih (splitPoint (stop - start)) (by omega) start
            (start + splitPoint (stop - start)) behind (by omega) (by omega) (by omega)
          have inLeft : index - start < splitPoint (leafRange leaves start stop).length := by
            rw [length]
            omega
          have path := siblingPath_of_lt_split (by rw [length]; exact several) inLeft
          rw [length, take_leafRange inside, drop_leafRange] at path
          simp only [if_pos before, lower, right, path]
          rfl
        · have lower := ih (stop - (start + splitPoint (stop - start))) (by omega)
            (start + splitPoint (stop - start)) stop (by omega) inside within rfl
          have inRight : splitPoint (leafRange leaves start stop).length ≤ index - start := by
            rw [length]
            omega
          have path := siblingPath_of_split_le (by rw [length]; exact several) inRight
          rw [length, take_leafRange inside, drop_leafRange, Nat.sub_sub] at path
          simp only [if_neg before, lower, left, path]
          rfl
      · rw [auditPath, dif_neg several, siblingPath_of_small (by omega)]

theorem subproof_ofLeaves {leaves : List Digest} (known start stop : Nat) (isEarlierTree : Bool)
    (inhabited : 0 < known) (ordered : known ≤ stop - start) (within : stop ≤ leaves.length) :
    (ofLeaves leaves).subproof known start stop isEarlierTree =
      .ok (growthPath known (leafRange leaves start stop) isEarlierTree) := by
  generalize countEq : stop - start = count
  induction count using Nat.strongRecOn generalizing known start stop isEarlierTree with
  | ind count ih =>
      have length := length_leafRange start within
      rw [subproof, growthPath, length]
      by_cases all : known = stop - start
      · rw [if_pos all, if_pos all, rangeHash_ofLeaves (by omega) within]
        cases isEarlierTree <;> rfl
      · have several : 2 ≤ stop - start := by omega
        have bound := splitPoint_lt several
        have positive := splitPoint_pos (stop - start)
        have inside : start + splitPoint (stop - start) ≤ stop := by omega
        have left := rangeHash_ofLeaves
          (Nat.le_add_right start (splitPoint (stop - start))) (Nat.le_trans inside within)
        have right := rangeHash_ofLeaves inside within
        rw [if_neg all, if_neg all]
        simp only [dif_pos several, take_leafRange inside, drop_leafRange]
        split
        · have lower := ih (splitPoint (stop - start)) (by omega) known start
            (start + splitPoint (stop - start)) isEarlierTree inhabited (by omega) (by omega)
            (by omega)
          rw [lower, right]
          rfl
        · have lower := ih (stop - (start + splitPoint (stop - start))) (by omega)
            (known - splitPoint (stop - start)) (start + splitPoint (stop - start)) stop false
            (by omega) (by omega) within rfl
          rw [lower, left]
          rfl

theorem inclusionPath_ofLeaves {leaves : List Digest} {index treeSize : Nat}
    (inside : index < treeSize) (reached : treeSize ≤ leaves.length) :
    (ofLeaves leaves).inclusionPath index treeSize =
      .ok (siblingPath index (leaves.take treeSize)) := by
  rw [inclusionPath, checkSize, size_ofLeaves, if_neg (Nat.not_lt_of_le reached)]
  have path := auditPath_ofLeaves index 0 treeSize (Nat.zero_le index) (Nat.zero_le treeSize)
    reached
  simp only [bind, Except.bind, if_neg (Nat.not_le_of_lt inside), path, leafRange, List.drop_zero,
    Nat.sub_zero]

theorem consistencyPath_of_trivial {leaves : List Digest} {first second : Nat}
    (trivial : first = 0 ∨ first = second) (ordered : first ≤ second)
    (reached : second ≤ leaves.length) :
    (ofLeaves leaves).consistencyPath first second = .ok [] := by
  rw [consistencyPath, checkSize, size_ofLeaves, if_neg (Nat.not_lt_of_le reached)]
  simp only [bind, Except.bind, Nat.not_lt_of_le ordered, trivial, if_true, if_false]

theorem consistencyPath_ofLeaves {leaves : List Digest} {first second : Nat}
    (inhabited : 0 < first) (smaller : first < second) (reached : second ≤ leaves.length) :
    (ofLeaves leaves).consistencyPath first second =
      .ok (growthPath first (leaves.take second) true) := by
  rw [consistencyPath, checkSize, size_ofLeaves, if_neg (Nat.not_lt_of_le reached)]
  have path := subproof_ofLeaves first 0 second true inhabited (Nat.le_of_lt smaller) reached
  have ordered : ¬first > second := by omega
  have different : ¬(first = 0 ∨ first = second) := by omega
  simp only [bind, Except.bind, ordered, different, if_false, path, leafRange, List.drop_zero]

/-! ### What is appended later -/

theorem inclusionPath_append {leaves : List Digest} {index treeSize : Nat} (more : List Digest)
    (inside : index < treeSize) (reached : treeSize ≤ leaves.length) :
    (ofLeaves (leaves ++ more)).inclusionPath index treeSize =
      (ofLeaves leaves).inclusionPath index treeSize := by
  have still : treeSize ≤ (leaves ++ more).length := by
    rw [List.length_append]
    omega
  rw [inclusionPath_ofLeaves inside still, inclusionPath_ofLeaves inside reached,
    List.take_append_of_le_length reached]

theorem consistencyPath_append {leaves : List Digest} {first second : Nat} (more : List Digest)
    (ordered : first ≤ second) (reached : second ≤ leaves.length) :
    (ofLeaves (leaves ++ more)).consistencyPath first second =
      (ofLeaves leaves).consistencyPath first second := by
  have still : second ≤ (leaves ++ more).length := by
    rw [List.length_append]
    omega
  by_cases trivial : first = 0 ∨ first = second
  · rw [consistencyPath_of_trivial trivial ordered still,
      consistencyPath_of_trivial trivial ordered reached]
  · rw [consistencyPath_ofLeaves (by omega) (by omega) still,
      consistencyPath_ofLeaves (by omega) (by omega) reached, List.take_append_of_le_length reached]

/-- The paths that a tree makes are those that the plain recursion over its leaves describes, every
hash being that of the tree over a part of the list. Whatever is appended afterwards and in whatever
batches the same leaves came, they stay the same. -/
theorem paths_exact (batches : List Batch)
    (fits : (batches.flatMap Batch.leaves).length < 2 ^ 64) :
    ∃ tree, grow batches = .ok tree ∧
      (∀ index treeSize, index < treeSize → treeSize ≤ (batches.flatMap Batch.leaves).length →
        tree.inclusionPath index treeSize =
          .ok (siblingPath index ((batches.flatMap Batch.leaves).take treeSize))) ∧
      (∀ first second, 0 < first → first < second →
        second ≤ (batches.flatMap Batch.leaves).length →
        tree.consistencyPath first second =
          .ok (growthPath first ((batches.flatMap Batch.leaves).take second) true)) ∧
      ∀ others : List Batch, (others.flatMap Batch.leaves).length < 2 ^ 64 →
        batches.flatMap Batch.leaves <+: others.flatMap Batch.leaves →
        ∃ later, grow others = .ok later ∧
          (∀ index treeSize, index < treeSize →
            treeSize ≤ (batches.flatMap Batch.leaves).length →
            later.inclusionPath index treeSize = tree.inclusionPath index treeSize) ∧
          ∀ first second, first ≤ second → second ≤ (batches.flatMap Batch.leaves).length →
            later.consistencyPath first second = tree.consistencyPath first second := by
  refine ⟨ofLeaves (batches.flatMap Batch.leaves), grow_eq_ofLeaves fits, ?_, ?_, ?_⟩
  · intro index treeSize inside reached
    exact inclusionPath_ofLeaves inside reached
  · intro first second inhabited smaller reached
    exact consistencyPath_ofLeaves inhabited smaller reached
  · rintro others othersFit ⟨more, appended⟩
    refine ⟨ofLeaves (others.flatMap Batch.leaves), grow_eq_ofLeaves othersFit, ?_, ?_⟩
    · intro index treeSize inside reached
      rw [← appended]
      exact inclusionPath_append more inside reached
    · intro first second ordered reached
      rw [← appended]
      exact consistencyPath_append more ordered reached

theorem paths_exact_otherBatches :
    ∃ tree later, grow [.extended [hashLeaf [1], hashLeaf [2]], .planned [hashLeaf [3]]] =
        .ok tree ∧
      grow [.planned [hashLeaf [1]], .extended [], .extended [hashLeaf [2]],
        .planned [hashLeaf [3], hashLeaf [4], hashLeaf [5]]] = .ok later ∧
      tree.inclusionPath 2 3 = .ok [hashChildren (hashLeaf [1]) (hashLeaf [2])] ∧
      later.inclusionPath 2 3 = .ok [hashChildren (hashLeaf [1]) (hashLeaf [2])] ∧
      tree.consistencyPath 2 3 = .ok [hashLeaf [3]] ∧
      later.consistencyPath 2 3 = .ok [hashLeaf [3]] := by
  obtain ⟨tree, grown, inclusion, consistency, still⟩ := paths_exact
    [.extended [hashLeaf [1], hashLeaf [2]], .planned [hashLeaf [3]]] (by simp [Batch.leaves])
  obtain ⟨later, regrown, sameInclusion, sameConsistency⟩ := still
    [.planned [hashLeaf [1]], .extended [], .extended [hashLeaf [2]],
      .planned [hashLeaf [3], hashLeaf [4], hashLeaf [5]]] (by simp [Batch.leaves])
    (by simp [Batch.leaves])
  have three : splitPoint 3 = 2 := by decide
  have audit := inclusion 2 3 (by decide) (by simp [Batch.leaves])
  have growth := consistency 2 3 (by decide) (by decide) (by simp [Batch.leaves])
  have sibling (first second third : Digest) :
      siblingPath 2 [first, second, third] = [hashChildren first second] := by
    simp [siblingPath, three, rootOf, splitPoint_two]
  have rest (first second third : Digest) :
      growthPath 2 [first, second, third] true = [third] := by
    simp [growthPath, three]
  simp only [Batch.leaves, List.flatMap_cons, List.flatMap_nil, List.append_nil, List.cons_append,
    List.nil_append, List.take_succ_cons, List.take_zero, sibling, rest] at audit growth
  exact ⟨tree, later, grown, regrown, audit,
    (sameInclusion 2 3 (by decide) (by simp [Batch.leaves])).trans audit, growth,
    (sameConsistency 2 3 (by decide) (by simp [Batch.leaves])).trans growth⟩

end Accumulator

end VerifiableLog.Merkle
