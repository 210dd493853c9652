import VerifiableLog.Proofs.Merkle.Climb
import VerifiableLog.Proofs.Merkle.Path

/-!
Completeness of verification. Every proof that a tree makes of its own leaves is accepted, at every
size that the tree has had and however its leaves were appended. The climb along a path undoes the
walk that made it: each step joins the two sides of one split.
-/

namespace VerifiableLog.Merkle

theorem follow_siblingPath (leaves : List Digest) (index : Nat) (leaf : Digest)
    (found : leaves[index]? = some leaf) :
    inclusionAscent.follow (route index leaves.length) leaf (siblingPath index leaves) =
      .ok (rootOf leaves) := by
  induction leaves using split_induction generalizing index with
  | small leaves few =>
      match leaves with
      | [] => simp at found
      | [single] =>
          rw [route_of_small few, siblingPath_of_small few, rootOf_singleton]
          obtain rfl : index = 0 := by
            have inside := (List.getElem?_eq_some_iff.mp found).1
            simpa using inside
          simpa [Ascent.follow, eq_comm] using found
  | split leaves several ihTake ihDrop =>
      have bound := splitPoint_lt several
      by_cases before : index < splitPoint leaves.length
      · have lower := ihTake index (by rw [List.getElem?_take_of_lt before]; exact found)
        rw [List.length_take_of_le (Nat.le_of_lt bound)] at lower
        rw [route_of_lt_split several before, siblingPath_of_lt_split several before,
          Ascent.follow_concat, lower, rootOf_split several]
        rfl
      · have place : splitPoint leaves.length + (index - splitPoint leaves.length) = index := by
          omega
        have lower := ihDrop (index - splitPoint leaves.length)
          (by rw [List.getElem?_drop, place]; exact found)
        rw [List.length_drop] at lower
        rw [route_of_split_le several (by omega), siblingPath_of_split_le several (by omega),
          Ascent.follow_concat, lower, rootOf_split several]
        rfl

theorem follow_growthPath (leaves : List Digest) (first : Nat) (inhabited : 0 < first)
    (within : first ≤ leaves.length) :
    ∃ start rest, growthPath first leaves false = start :: rest ∧
      consistencyAscent.follow (growthRoute first leaves.length) (start, start) rest =
        .ok (rootOf (leaves.take first), rootOf leaves) := by
  induction leaves using split_induction generalizing first with
  | small leaves few =>
      obtain rfl : first = leaves.length := by omega
      rw [growthPath_self, growthRoute_self, List.take_length]
      exact ⟨rootOf leaves, [], rfl, rfl⟩
  | split leaves several ihTake ihDrop =>
      by_cases all : first = leaves.length
      · subst all
        rw [growthPath_self, growthRoute_self, List.take_length]
        exact ⟨rootOf leaves, [], rfl, rfl⟩
      · have bound := splitPoint_lt several
        have smaller : first < leaves.length := by omega
        by_cases inTake : first ≤ splitPoint leaves.length
        · have takeLength := List.length_take_of_le (Nat.le_of_lt bound)
          obtain ⟨start, rest, path, followed⟩ :=
            ihTake first inhabited (by rw [takeLength]; exact inTake)
          rw [takeLength, List.take_take, Nat.min_eq_left inTake] at followed
          refine ⟨start, rest ++ [rootOf (leaves.drop (splitPoint leaves.length))], ?_, ?_⟩
          · rw [growthPath_of_le_split several smaller inTake, path, List.cons_append]
          · rw [growthRoute_of_le_split several smaller inTake, Ascent.follow_concat, followed,
              rootOf_split several]
            rfl
        · have beyond : splitPoint leaves.length < first := by omega
          obtain ⟨start, rest, path, followed⟩ := ihDrop (first - splitPoint leaves.length)
            (by omega) (by rw [List.length_drop]; omega)
          rw [List.length_drop] at followed
          refine ⟨start, rest ++ [rootOf (leaves.take (splitPoint leaves.length))], ?_, ?_⟩
          · rw [growthPath_of_split_lt smaller beyond, path, List.cons_append]
          · rw [growthRoute_of_split_lt smaller beyond, Ascent.follow_concat, followed,
              rootOf_split several, rootOf_take_split beyond within]
            rfl

theorem isPowerOfTwo_iff {count : Nat} :
    isPowerOfTwo count = true ↔ ∃ exponent, count = 2 ^ exponent := by
  simp only [isPowerOfTwo, Nat.one_shiftLeft, Bool.and_eq_true, decide_eq_true_eq, beq_iff_eq]
  constructor
  · rintro ⟨_, power⟩
    exact ⟨Nat.log2 count, power.symm⟩
  · rintro ⟨exponent, rfl⟩
    have positive := Nat.two_pow_pos exponent
    rw [Nat.log2_two_pow]
    exact ⟨by omega, rfl⟩

/-- An earlier tree whose size is a power of two is met whole, on the left, all the way down. -/
theorem follow_growthPath_of_power (leaves : List Digest) (exponent : Nat)
    (within : 2 ^ exponent ≤ leaves.length) :
    consistencyAscent.follow (growthRoute (2 ^ exponent) leaves.length)
        (rootOf (leaves.take (2 ^ exponent)), rootOf (leaves.take (2 ^ exponent)))
        (growthPath (2 ^ exponent) leaves true) =
      .ok (rootOf (leaves.take (2 ^ exponent)), rootOf leaves) := by
  have positive := Nat.two_pow_pos exponent
  induction leaves using split_induction with
  | small leaves few =>
      have all : 2 ^ exponent = leaves.length := by omega
      rw [all, growthPath_self, growthRoute_self, List.take_length]
      rfl
  | split leaves several ihTake _ =>
      by_cases all : 2 ^ exponent = leaves.length
      · rw [all, growthPath_self, growthRoute_self, List.take_length]
        rfl
      · have bound := splitPoint_lt several
        have smaller : 2 ^ exponent < leaves.length := by omega
        have inTake := two_pow_le_splitPoint smaller
        have takeLength := List.length_take_of_le (Nat.le_of_lt bound)
        have lower := ihTake (by rw [takeLength]; exact inTake)
        rw [takeLength, List.take_take, Nat.min_eq_left inTake] at lower
        rw [growthPath_of_le_split several smaller inTake,
          growthRoute_of_le_split several smaller inTake, Ascent.follow_concat, lower,
          rootOf_split several]
        rfl

theorem growthPath_of_not_power (leaves : List Digest) (first : Nat)
    (smaller : first < leaves.length) (notPower : ∀ exponent, first ≠ 2 ^ exponent) :
    growthPath first leaves true = growthPath first leaves false := by
  induction leaves using split_induction with
  | small leaves few =>
      obtain rfl : first = 0 := by omega
      rw [growthPath, if_neg (by omega), dif_neg (by omega), growthPath, if_neg (by omega),
        dif_neg (by omega)]
  | split leaves several ihTake _ =>
      have bound := splitPoint_lt several
      by_cases inTake : first ≤ splitPoint leaves.length
      · have notSplit : first ≠ splitPoint leaves.length := by
          rw [splitPoint_eq_two_pow]
          exact notPower _
        rw [growthPath_of_le_split several smaller inTake,
          growthPath_of_le_split several smaller inTake,
          ihTake (by rw [List.length_take_of_le (Nat.le_of_lt bound)]; omega)]
      · rw [growthPath_of_split_lt smaller (by omega), growthPath_of_split_lt smaller (by omega)]

theorem verifyConsistency_growthPath {leaves : List Digest} {first : Nat} (inhabited : 0 < first)
    (smaller : first < leaves.length) :
    verifyConsistency first leaves.length (rootOf (leaves.take first)) (rootOf leaves)
      (growthPath first leaves true) = .ok () := by
  rw [verifyConsistency_ok_iff inhabited smaller]
  by_cases power : ∃ exponent, first = 2 ^ exponent
  · obtain ⟨exponent, rfl⟩ := power
    have isPower := isPowerOfTwo_iff.mpr ⟨exponent, rfl⟩
    refine ⟨rootOf (leaves.take (2 ^ exponent)), growthPath (2 ^ exponent) leaves true, ?_,
      follow_growthPath_of_power leaves exponent (Nat.le_of_lt smaller)⟩
    cases growthPath (2 ^ exponent) leaves true <;> simp [consistencyStart, isPower]
  · have notPower : isPowerOfTwo first = false := by
      rw [← Bool.not_eq_true, isPowerOfTwo_iff]
      exact power
    obtain ⟨start, rest, path, followed⟩ :=
      follow_growthPath leaves first inhabited (Nat.le_of_lt smaller)
    rw [growthPath_of_not_power leaves first smaller (not_exists.mp power), path]
    exact ⟨start, rest, by simp [consistencyStart, notPower], followed⟩

theorem exists_growthPath_concat {leaves : List Digest} {first : Nat} (inhabited : 0 < first)
    (smaller : first < leaves.length) (isEarlierTree : Bool) :
    ∃ lower sibling, growthPath first leaves isEarlierTree = lower ++ [sibling] := by
  by_cases within : first ≤ splitPoint leaves.length
  · exact ⟨_, _, growthPath_of_le_split (by omega) smaller within isEarlierTree⟩
  · exact ⟨_, _, growthPath_of_split_lt smaller (by omega) isEarlierTree⟩

namespace Accumulator

/-- A tree proves each of its leaves in every tree that it has been since the leaf came. Its size is
a word of 64 bits, which is all that is asked of the batches. -/
theorem inclusionPath_complete (batches : List Batch)
    (fits : (batches.flatMap Batch.leaves).length < 2 ^ 64) :
    ∃ tree, grow batches = .ok tree ∧
      ∀ index treeSize, index < treeSize → treeSize ≤ (batches.flatMap Batch.leaves).length →
        ∃ leaf path root, (batches.flatMap Batch.leaves)[index]? = some leaf ∧
          tree.inclusionPath index treeSize = .ok path ∧
          rootFromInclusionProof leaf index treeSize path =
            .ok (rootOf ((batches.flatMap Batch.leaves).take treeSize)) ∧
          tree.root treeSize = .ok root ∧
          verifyInclusion leaf index treeSize path root = .ok () := by
  refine ⟨ofLeaves (batches.flatMap Batch.leaves), grow_eq_ofLeaves fits, ?_⟩
  generalize batches.flatMap Batch.leaves = leaves
  intro index treeSize inside reached
  have found : leaves[index]? = some leaves[index] := List.getElem?_eq_getElem (by omega)
  have followed := follow_siblingPath (leaves.take treeSize) index leaves[index]
    (by rw [List.getElem?_take_of_lt inside]; exact found)
  rw [List.length_take_of_le reached] at followed
  have verified := verifyInclusion_ok_iff.mpr ⟨inside, followed⟩
  refine ⟨leaves[index], siblingPath index (leaves.take treeSize), rootOf (leaves.take treeSize),
    found, inclusionPath_ofLeaves inside reached, ?_, root_ofLeaves reached, verified⟩
  rw [rootFromInclusionProof_eq_follow inside, followed]

theorem inclusionPath_complete_raggedEdge :
    ∃ tree, grow [.extended [hashLeaf [1], hashLeaf [2]], .planned [hashLeaf [3], hashLeaf [4]],
        .extended [], .planned [hashLeaf [5]]] = .ok tree ∧
      ∃ shortPath shortRoot longPath longRoot,
        tree.inclusionPath 2 3 = .ok shortPath ∧ tree.root 3 = .ok shortRoot ∧
        verifyInclusion (hashLeaf [3]) 2 3 shortPath shortRoot = .ok () ∧
        tree.inclusionPath 2 5 = .ok longPath ∧ tree.root 5 = .ok longRoot ∧
        verifyInclusion (hashLeaf [3]) 2 5 longPath longRoot = .ok () := by
  obtain ⟨tree, grown, proves⟩ := inclusionPath_complete
    [.extended [hashLeaf [1], hashLeaf [2]], .planned [hashLeaf [3], hashLeaf [4]], .extended [],
      .planned [hashLeaf [5]]] (by simp [Batch.leaves])
  obtain ⟨leaf, shortPath, shortRoot, found, shortMade, _, shortHas, shortVerified⟩ :=
    proves 2 3 (by decide) (by simp [Batch.leaves])
  obtain ⟨again, longPath, longRoot, foundAgain, longMade, _, longHas, longVerified⟩ :=
    proves 2 5 (by decide) (by simp [Batch.leaves])
  obtain rfl : hashLeaf [3] = leaf := by simpa [Batch.leaves] using found
  obtain rfl : hashLeaf [3] = again := by simpa [Batch.leaves] using foundAgain
  exact ⟨tree, grown, shortPath, shortRoot, longPath, longRoot, shortMade, shortHas, shortVerified,
    longMade, longHas, longVerified⟩

/-- A tree proves that each tree it has been grew from every earlier one, again for any batches
whose leaves a word of 64 bits can count. -/
theorem consistencyPath_complete (batches : List Batch)
    (fits : (batches.flatMap Batch.leaves).length < 2 ^ 64) :
    ∃ tree, grow batches = .ok tree ∧
      ∀ first second, first ≤ second → second ≤ (batches.flatMap Batch.leaves).length →
        ∃ path firstRoot secondRoot, tree.consistencyPath first second = .ok path ∧
          tree.root first = .ok firstRoot ∧ tree.root second = .ok secondRoot ∧
          verifyConsistency first second firstRoot secondRoot path = .ok () ∧
          (path = [] ↔ first = 0 ∨ first = second) := by
  refine ⟨ofLeaves (batches.flatMap Batch.leaves), grow_eq_ofLeaves fits, ?_⟩
  generalize batches.flatMap Batch.leaves = leaves
  intro first second ordered reached
  have firstRoot := root_ofLeaves (Nat.le_trans ordered reached)
  have secondRoot := root_ofLeaves reached
  by_cases trivial : first = 0 ∨ first = second
  · refine ⟨[], _, _, consistencyPath_of_trivial trivial ordered reached, firstRoot, secondRoot,
      ?_, by simp [trivial]⟩
    rw [verifyConsistency_trivial_ok_iff ordered trivial]
    refine ⟨rfl, ?_⟩
    rintro rfl
    rfl
  · have inhabited : 0 < first := by omega
    have smaller : first < second := by omega
    have takeLength := List.length_take_of_le reached
    have shorter : first < (leaves.take second).length := by omega
    have verified := verifyConsistency_growthPath inhabited shorter
    rw [takeLength, List.take_take, Nat.min_eq_left ordered] at verified
    obtain ⟨lower, sibling, path⟩ := exists_growthPath_concat inhabited shorter true
    exact ⟨_, _, _, consistencyPath_ofLeaves inhabited smaller reached, firstRoot, secondRoot,
      verified, by simp [path, trivial]⟩

theorem consistencyPath_complete_raggedSizes :
    ∃ tree, grow [.extended [hashLeaf [1], hashLeaf [2]], .planned [hashLeaf [3], hashLeaf [4]],
        .extended [], .planned [hashLeaf [5]]] = .ok tree ∧
      ∃ threePath threeRoot fourPath fourRoot fiveRoot,
        tree.consistencyPath 3 5 = .ok threePath ∧ threePath ≠ [] ∧
        tree.consistencyPath 4 5 = .ok fourPath ∧ fourPath ≠ [] ∧
        tree.root 3 = .ok threeRoot ∧ tree.root 4 = .ok fourRoot ∧ tree.root 5 = .ok fiveRoot ∧
        verifyConsistency 3 5 threeRoot fiveRoot threePath = .ok () ∧
        verifyConsistency 4 5 fourRoot fiveRoot fourPath = .ok () := by
  obtain ⟨tree, grown, proves⟩ := consistencyPath_complete
    [.extended [hashLeaf [1], hashLeaf [2]], .planned [hashLeaf [3], hashLeaf [4]], .extended [],
      .planned [hashLeaf [5]]] (by simp [Batch.leaves])
  obtain ⟨threePath, threeRoot, fiveRoot, threeMade, threeHas, fiveHas, threeVerified, threeSome⟩ :=
    proves 3 5 (by decide) (by simp [Batch.leaves])
  obtain ⟨fourPath, fourRoot, sameRoot, fourMade, fourHas, sameHas, fourVerified, fourSome⟩ :=
    proves 4 5 (by decide) (by simp [Batch.leaves])
  rw [fiveHas] at sameHas
  obtain rfl := Except.ok.inj sameHas
  exact ⟨tree, grown, threePath, threeRoot, fourPath, fourRoot, fiveRoot, threeMade,
    by simp [threeSome], fourMade, by simp [fourSome], threeHas, fourHas, fiveHas, threeVerified,
    fourVerified⟩

end Accumulator

end VerifiableLog.Merkle
