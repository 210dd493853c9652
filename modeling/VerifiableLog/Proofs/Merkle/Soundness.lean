import VerifiableLog.Proofs.Merkle.Collision

/-!
Soundness of verification. Whatever path is sent along, an accepted inclusion proof names the leaf
that the tree has at the index, and an accepted consistency proof shows an earlier tree whose leaves
begin the later one, or else two different inputs hashed on the way have the same hash. Both proofs
go down from the root: as long as nothing collides, the sides of a root that is right are right.
-/

namespace VerifiableLog.Merkle

variable {inputs : List (Digest × Digest)}

def Side.sibling : Side → Digest → Digest → Digest
  | .left, leftRoot, _ => leftRoot
  | .right, _, rightRoot => rightRoot

def Side.child : Side → Digest → Digest → Digest
  | .left, _, rightRoot => rightRoot
  | .right, leftRoot, _ => leftRoot

theorem follow_child (apart : ¬Collides hashPair inputs) {sides : List Side} {side : Side}
    {hash leftRoot rightRoot : Digest} {path : List Digest}
    (rootHashed : (leftRoot, rightRoot) ∈ inputs)
    (pathHashed : inclusionAscent.trace (sides ++ [side]) hash path ⊆ inputs)
    (reached : inclusionAscent.follow (sides ++ [side]) hash path =
      .ok (hashChildren leftRoot rightRoot)) :
    ∃ lower, inclusionAscent.trace sides hash lower ⊆ inputs ∧
      inclusionAscent.follow sides hash lower = .ok (side.child leftRoot rightRoot) := by
  obtain ⟨lower, sibling, below, rfl, followed, joined, traced⟩ := Ascent.exists_last_step reached
  rw [traced] at pathHashed
  refine ⟨lower, (List.append_subset.mp pathHashed).1, ?_⟩
  cases side with
  | left =>
      simp only [inclusionAscent, List.append_subset, List.cons_subset] at pathHashed joined
      have children := eq_of_not_collides apart pathHashed.2.1 rootHashed joined
      simp only [Prod.mk.injEq] at children
      rw [followed, Side.child, children.2]
  | right =>
      simp only [inclusionAscent, List.append_subset, List.cons_subset] at pathHashed joined
      have children := eq_of_not_collides apart pathHashed.2.1 rootHashed joined
      simp only [Prod.mk.injEq] at children
      rw [followed, Side.child, children.1]

theorem getElem?_of_follow (apart : ¬Collides hashPair inputs) (leaves : List Digest)
    (index : Nat) (hash : Digest) (path : List Digest) (inside : index < leaves.length)
    (rootHashed : rootPairs leaves ⊆ inputs)
    (pathHashed : inclusionAscent.trace (route index leaves.length) hash path ⊆ inputs)
    (reached : inclusionAscent.follow (route index leaves.length) hash path =
      .ok (rootOf leaves)) :
    leaves[index]? = some hash := by
  induction leaves using split_induction generalizing index hash path with
  | small leaves few =>
      rw [route_of_small few] at reached
      match leaves, path with
      | [leaf], [] =>
          obtain rfl : index = 0 := by simpa using inside
          simpa [Ascent.follow, eq_comm] using reached
      | [leaf], sibling :: path => simp [Ascent.follow] at reached
  | split leaves several ihTake ihDrop =>
      have bound := splitPoint_lt several
      rw [rootPairs_split several] at rootHashed
      simp only [List.append_subset, List.cons_subset] at rootHashed
      rw [rootOf_split several] at reached
      by_cases before : index < splitPoint leaves.length
      · rw [route_of_lt_split several before] at reached pathHashed
        obtain ⟨lower, lowerHashed, followed⟩ :=
          follow_child apart rootHashed.2.1 pathHashed reached
        have takeLength := List.length_take_of_le (Nat.le_of_lt bound)
        have inTake := ihTake index hash lower (by rw [takeLength]; exact before) rootHashed.1.1
          (by rw [takeLength]; exact lowerHashed) (by rw [takeLength]; exact followed)
        rwa [List.getElem?_take_of_lt before] at inTake
      · rw [route_of_split_le several (by omega)] at reached pathHashed
        obtain ⟨lower, lowerHashed, followed⟩ :=
          follow_child apart rootHashed.2.1 pathHashed reached
        have place : splitPoint leaves.length + (index - splitPoint leaves.length) = index := by
          omega
        have inDrop := ihDrop (index - splitPoint leaves.length) hash lower
          (by rw [List.length_drop]; omega) rootHashed.1.2
          (by rw [List.length_drop]; exact lowerHashed)
          (by rw [List.length_drop]; exact followed)
        rwa [List.getElem?_drop, place] at inDrop

/-- An accepted inclusion proof is about the value that stands at the index, unless SHA-256
collides on two of the byte strings hashed for the proof and for the root. -/
theorem verifyInclusion_sound (values : List Bytes) (value : Bytes) (index : Nat)
    (path : List Digest)
    (accepted : verifyInclusion (hashLeaf value) index values.length path
      (rootOf (values.map hashLeaf)) = .ok ()) :
    index < values.length ∧
      (values[index]? = some value ∨
        Collides Sha256.hash
          (inclusionMessages value index values.length path ++ rootMessages values)) := by
  obtain ⟨inside, reached⟩ := verifyInclusion_ok_iff.mp accepted
  refine ⟨inside, ?_⟩
  by_cases collision : Collides hashPair
      (inclusionPairs (hashLeaf value) index values.length path ++
        rootPairs (values.map hashLeaf))
  · right
    apply collision.pairMessage.mono
    rw [List.map_append, List.append_subset]
    constructor
    · exact List.subset_append_of_subset_left _ (List.subset_cons_self _ _)
    · exact List.subset_append_of_subset_right _ (List.subset_append_right _ _)
  · have hashFound := getElem?_of_follow collision (values.map hashLeaf) index (hashLeaf value) path
      (by rw [List.length_map]; exact inside) (List.subset_append_right _ _)
      (by
        rw [List.length_map, ← inclusionPairs_eq_trace inside]
        exact List.subset_append_left _ _)
      (by rw [List.length_map]; exact reached)
    rw [List.getElem?_map, Option.map_eq_some_iff] at hashFound
    obtain ⟨found, atIndex, sameHash⟩ := hashFound
    by_cases same : found = value
    · left
      rw [atIndex, same]
    · right
      have present := leafMessage_mem_rootMessages (List.mem_of_getElem? atIndex)
      refine ⟨leafMessage found, List.mem_append_right _ present, leafMessage value,
        List.mem_append_left _ (List.mem_cons_self ..), ?_, ?_⟩
      · simpa [leafMessage] using same
      · rw [hash_leafMessage, hash_leafMessage, sameHash]

theorem verifyInclusion_sound_raggedEdge :
    verifyInclusion (hashLeaf [3]) 2 3 [hashChildren (hashLeaf [1]) (hashLeaf [2])]
        (rootOf ([[1], [2], [3]].map hashLeaf)) = .ok () ∧
      2 < 3 ∧
      (([[1], [2], [3]] : List Bytes)[2]? = some [3] ∨
        Collides Sha256.hash
          (inclusionMessages [3] 2 3 [hashChildren (hashLeaf [1]) (hashLeaf [2])] ++
            rootMessages [[1], [2], [3]])) := by
  have accepted (first second third : Digest) : verifyInclusion third 2 3
      [hashChildren first second] (rootOf [first, second, third]) = .ok () := by
    simp [verifyInclusion, rootFromInclusionProof, climbInclusion, climbFromRight, skipLonely,
      rootOf, splitPoint, show Nat.log2 1 = 0 by decide, show Nat.log2 2 = 1 by decide, bind,
      Except.bind]
  have proof := accepted (hashLeaf [1]) (hashLeaf [2]) (hashLeaf [3])
  exact ⟨proof, verifyInclusion_sound [[1], [2], [3]] [3] 2 _ proof⟩

theorem follow_child_later (apart : ¬Collides hashPair inputs) {sides : List Side} {side : Side}
    {state : Digest × Digest} {earlier leftRoot rightRoot : Digest} {path : List Digest}
    (rootHashed : (leftRoot, rightRoot) ∈ inputs)
    (pathHashed : consistencyAscent.trace (sides ++ [side]) state path ⊆ inputs)
    (reached : consistencyAscent.follow (sides ++ [side]) state path =
      .ok (earlier, hashChildren leftRoot rightRoot)) :
    ∃ lower below, consistencyAscent.trace sides state lower ⊆ inputs ∧
      consistencyAscent.follow sides state lower = .ok (below, side.child leftRoot rightRoot) ∧
      (consistencyAscent.join side (side.sibling leftRoot rightRoot)
        (below, side.child leftRoot rightRoot)).1 = earlier := by
  obtain ⟨lower, sibling, ⟨below, laterBelow⟩, rfl, followed, joined, traced⟩ :=
    Ascent.exists_last_step reached
  rw [traced] at pathHashed
  refine ⟨lower, below, (List.append_subset.mp pathHashed).1, ?_⟩
  cases side with
  | left =>
      simp only [consistencyAscent, List.append_subset, List.cons_subset, Prod.mk.injEq]
        at pathHashed joined
      have children := eq_of_not_collides apart pathHashed.2.2.1 rootHashed joined.2
      simp only [Prod.mk.injEq] at children
      rw [followed, Side.sibling, Side.child, ← children.1, ← children.2]
      exact ⟨rfl, joined.1⟩
  | right =>
      simp only [consistencyAscent, List.append_subset, List.cons_subset, Prod.mk.injEq]
        at pathHashed joined
      have children := eq_of_not_collides apart pathHashed.2.1 rootHashed joined.2
      simp only [Prod.mk.injEq] at children
      rw [followed, Side.sibling, Side.child, ← children.1, ← children.2]
      exact ⟨rfl, joined.1⟩

theorem rootOf_take_of_follow_self (leaves : List Digest) {start earlier : Digest}
    {path : List Digest}
    (reached : consistencyAscent.follow (growthRoute leaves.length leaves.length) (start, start)
      path = .ok (earlier, rootOf leaves)) :
    earlier = rootOf (leaves.take leaves.length) := by
  rw [growthRoute_self] at reached
  rw [List.take_length]
  cases path with
  | nil =>
      simp only [Ascent.follow, Except.ok.injEq, Prod.mk.injEq] at reached
      rw [← reached.1, reached.2]
  | cons sibling path => simp [Ascent.follow] at reached

theorem rootOf_take_of_follow (apart : ¬Collides hashPair inputs) (leaves : List Digest)
    (first : Nat) (start earlier : Digest) (path : List Digest) (inhabited : 0 < first)
    (within : first ≤ leaves.length) (rootHashed : rootPairs leaves ⊆ inputs)
    (pathHashed :
      consistencyAscent.trace (growthRoute first leaves.length) (start, start) path ⊆ inputs)
    (reached : consistencyAscent.follow (growthRoute first leaves.length) (start, start) path =
      .ok (earlier, rootOf leaves)) :
    earlier = rootOf (leaves.take first) := by
  induction leaves using split_induction generalizing first earlier path with
  | small leaves few =>
      obtain rfl : first = leaves.length := by omega
      exact rootOf_take_of_follow_self leaves reached
  | split leaves several ihTake ihDrop =>
      by_cases all : first = leaves.length
      · subst all
        exact rootOf_take_of_follow_self leaves reached
      · have bound := splitPoint_lt several
        have smaller : first < leaves.length := by omega
        rw [rootPairs_split several] at rootHashed
        simp only [List.append_subset, List.cons_subset] at rootHashed
        rw [rootOf_split several] at reached
        by_cases inTake : first ≤ splitPoint leaves.length
        · rw [growthRoute_of_le_split several smaller inTake] at reached pathHashed
          obtain ⟨lower, below, lowerHashed, followed, rfl⟩ :=
            follow_child_later apart rootHashed.2.1 pathHashed reached
          have takeLength := List.length_take_of_le (Nat.le_of_lt bound)
          have rebuilt := ihTake first below lower inhabited (by rw [takeLength]; exact inTake)
            rootHashed.1.1 (by rw [takeLength]; exact lowerHashed)
            (by rw [takeLength]; exact followed)
          rwa [List.take_take, Nat.min_eq_left inTake] at rebuilt
        · have beyond : splitPoint leaves.length < first := by omega
          rw [growthRoute_of_split_lt smaller beyond] at reached pathHashed
          obtain ⟨lower, below, lowerHashed, followed, rfl⟩ :=
            follow_child_later apart rootHashed.2.1 pathHashed reached
          have rebuilt := ihDrop (first - splitPoint leaves.length) below lower (by omega)
            (by rw [List.length_drop]; omega) rootHashed.1.2
            (by rw [List.length_drop]; exact lowerHashed)
            (by rw [List.length_drop]; exact followed)
          rw [rootOf_take_split beyond within, ← rebuilt]
          rfl

theorem rootOf_eq_of_accepted (apart : ¬Collides hashPair inputs) {earlier later : List Digest}
    {path : List Digest} (notLonger : earlier.length ≤ later.length)
    (laterHashed : rootPairs later ⊆ inputs)
    (pathHashed :
      consistencyPairs earlier.length later.length (rootOf earlier) path ⊆ inputs)
    (accepted : verifyConsistency earlier.length later.length (rootOf earlier) (rootOf later) path =
      .ok ()) :
    rootOf earlier = rootOf (later.take earlier.length) := by
  by_cases empty : earlier.length = 0
  · rw [empty, List.take_zero, List.length_eq_zero_iff.mp empty]
  · by_cases same : earlier.length = later.length
    · rw [same, List.take_length]
      exact ((verifyConsistency_trivial_ok_iff notLonger (.inr same)).mp accepted).2 same
    · have smaller : earlier.length < later.length := by omega
      obtain ⟨start, rest, started, followed⟩ :=
        (verifyConsistency_ok_iff (by omega) smaller).mp accepted
      rw [consistencyPairs_eq_trace (by omega) smaller started] at pathHashed
      exact rootOf_take_of_follow apart later earlier.length start (rootOf earlier) rest (by omega)
        notLonger laterHashed pathHashed followed

/-- An accepted consistency proof is about a tree that only grew: the leaves of the earlier tree
begin those of the later one, unless two pairs hashed for the proof, for the two roots or for the
root over the beginning of the later tree collide. -/
theorem verifyConsistency_sound (earlier later : List Digest) (path : List Digest)
    (accepted : verifyConsistency earlier.length later.length (rootOf earlier) (rootOf later) path =
      .ok ()) :
    earlier <+: later ∨
      Collides hashPair
        (consistencyPairs earlier.length later.length (rootOf earlier) path ++
          rootPairs earlier ++ rootPairs later ++ rootPairs (later.take earlier.length)) := by
  apply Classical.or_iff_not_imp_right.mpr
  intro apart
  have notLonger : earlier.length ≤ later.length := by
    apply Nat.le_of_not_lt
    intro longer
    simp [verifyConsistency, longer] at accepted
  have sameRoot := rootOf_eq_of_accepted apart notLonger
    (by intro pair hashed; simp [hashed]) (by intro pair hashed; simp [hashed]) accepted
  have sameLeaves := eq_of_rootOf_eq apart earlier (later.take earlier.length)
    (List.length_take_of_le notLonger).symm
    (by intro pair hashed; simp [hashed]) (by intro pair hashed; simp [hashed]) sameRoot
  rw [sameLeaves]
  exact List.take_prefix earlier.length later

theorem verifyConsistency_sound_raggedSizes :
    verifyConsistency 3 5 (rootOf [hashLeaf [1], hashLeaf [2], hashLeaf [3]])
        (rootOf [hashLeaf [1], hashLeaf [2], hashLeaf [3], hashLeaf [4], hashLeaf [5]])
        [hashLeaf [3], hashLeaf [4], hashChildren (hashLeaf [1]) (hashLeaf [2]), hashLeaf [5]] =
      .ok () ∧
    ([hashLeaf [1], hashLeaf [2], hashLeaf [3]] <+:
        [hashLeaf [1], hashLeaf [2], hashLeaf [3], hashLeaf [4], hashLeaf [5]] ∨
      Collides hashPair
        (consistencyPairs 3 5 (rootOf [hashLeaf [1], hashLeaf [2], hashLeaf [3]])
            [hashLeaf [3], hashLeaf [4], hashChildren (hashLeaf [1]) (hashLeaf [2]), hashLeaf [5]] ++
          rootPairs [hashLeaf [1], hashLeaf [2], hashLeaf [3]] ++
          rootPairs [hashLeaf [1], hashLeaf [2], hashLeaf [3], hashLeaf [4], hashLeaf [5]] ++
          rootPairs [hashLeaf [1], hashLeaf [2], hashLeaf [3]])) := by
  have accepted (first second third fourth fifth : Digest) :
      verifyConsistency 3 5 (rootOf [first, second, third])
        (rootOf [first, second, third, fourth, fifth])
        [third, fourth, hashChildren first second, fifth] = .ok () := by
    simp [verifyConsistency, isPowerOfTwo, skipRightChildren, climbConsistency, climbFromRight,
      skipLonely, rootOf, splitPoint, show Nat.log2 1 = 0 by decide, show Nat.log2 2 = 1 by decide,
      show Nat.log2 3 = 1 by decide, show Nat.log2 4 = 2 by decide, bind, Except.bind]
  have proof := accepted (hashLeaf [1]) (hashLeaf [2]) (hashLeaf [3]) (hashLeaf [4]) (hashLeaf [5])
  exact ⟨proof, verifyConsistency_sound [_, _, _] [_, _, _, _, _] _ proof⟩

end VerifiableLog.Merkle
