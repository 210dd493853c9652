import VerifiableLog.Proofs.Merkle.Completeness

/-!
Checking a proof from the root down. The verifiers climb from a leaf on halved indices. Here the
same roots are rebuilt along the splits of the tree, by undoing the walk that makes a proof: the
last hash of a path is that of the side that the walk leaves out. The two agree for every index and
all sizes, whatever the hashes, and a path is refused for its length exactly if a tree of that size
makes one of another length.
-/

namespace VerifiableLog.Merkle

/-! ### Inclusion -/

/-- The root of the tree of `count` leaves that has `leaf` at `index`, if `path` has one hash for
each split on the way. -/
def rebuildRoot (leaf : Digest) (index count : Nat) (path : List Digest) : Option Digest :=
  if _ : 2 ≤ count then
    let split := splitPoint count
    path.getLast?.bind fun sibling =>
      if index < split then
        (rebuildRoot leaf index split path.dropLast).map fun left => hashChildren left sibling
      else
        (rebuildRoot leaf (index - split) (count - split) path.dropLast).map fun right =>
          hashChildren sibling right
  else if path = [] then some leaf else none
termination_by count
decreasing_by
  · exact splitPoint_lt (by omega)
  · have positive := splitPoint_pos count
    omega

theorem rebuildRoot_of_small {count : Nat} (small : count < 2) (leaf : Digest) (index : Nat)
    (path : List Digest) :
    rebuildRoot leaf index count path = if path = [] then some leaf else none := by
  rw [rebuildRoot, dif_neg (by omega)]

theorem rebuildRoot_nil {count : Nat} (several : 2 ≤ count) (leaf : Digest) (index : Nat) :
    rebuildRoot leaf index count [] = none := by
  rw [rebuildRoot, dif_pos several]
  rfl

theorem rebuildRoot_concat_of_lt_split {index count : Nat} (several : 2 ≤ count)
    (before : index < splitPoint count) (leaf sibling : Digest) (path : List Digest) :
    rebuildRoot leaf index count (path ++ [sibling]) =
      (rebuildRoot leaf index (splitPoint count) path).map
        (inclusionAscent.join .right sibling) := by
  rw [rebuildRoot, dif_pos several]
  simp only [List.getLast?_append, List.getLast?_singleton, Option.some_or, Option.bind_some,
    if_pos before, List.dropLast_concat]
  rfl

theorem rebuildRoot_concat_of_split_le {index count : Nat} (several : 2 ≤ count)
    (behind : splitPoint count ≤ index) (leaf sibling : Digest) (path : List Digest) :
    rebuildRoot leaf index count (path ++ [sibling]) =
      (rebuildRoot leaf (index - splitPoint count) (count - splitPoint count) path).map
        (inclusionAscent.join .left sibling) := by
  rw [rebuildRoot, dif_pos several]
  simp only [List.getLast?_append, List.getLast?_singleton, Option.some_or, Option.bind_some,
    if_neg (Nat.not_lt_of_le behind), List.dropLast_concat]
  rfl

theorem toOption_follow_route (leaf : Digest) (index count : Nat) (path : List Digest) :
    (inclusionAscent.follow (route index count) leaf path).toOption =
      rebuildRoot leaf index count path := by
  induction count using Nat.strongRecOn generalizing index path with
  | ind count ih =>
      by_cases several : 2 ≤ count
      · have bound := splitPoint_lt several
        have positive := splitPoint_pos count
        rcases List.eq_nil_or_concat path with rfl | ⟨lower, sibling, rfl⟩
        · obtain ⟨sides, side, isConcat⟩ := exists_route_concat several index
          rw [rebuildRoot_nil several, isConcat, Ascent.follow_concat_nil]
          rfl
        · rw [List.concat_eq_append]
          by_cases before : index < splitPoint count
          · rw [route_of_lt_split several before, Ascent.toOption_follow_concat, ih _ bound,
              rebuildRoot_concat_of_lt_split several before]
          · rw [route_of_split_le several (by omega), Ascent.toOption_follow_concat,
              ih _ (by omega), rebuildRoot_concat_of_split_le several (by omega)]
      · rw [route_of_small (by omega), rebuildRoot_of_small (by omega)]
        cases path <;> rfl

theorem isSome_rebuildRoot_iff (leaf : Digest) (index : Nat) (leaves path : List Digest) :
    (rebuildRoot leaf index leaves.length path).isSome = true ↔
      path.length = (siblingPath index leaves).length := by
  induction leaves using split_induction generalizing index path with
  | small leaves few =>
      rw [rebuildRoot_of_small few, siblingPath_of_small few]
      cases path <;> simp
  | split leaves several ihTake ihDrop =>
      have bound := splitPoint_lt several
      rcases List.eq_nil_or_concat path with rfl | ⟨lower, sibling, rfl⟩
      · obtain ⟨rest, last, isConcat⟩ := exists_siblingPath_concat several index
        rw [rebuildRoot_nil several, isConcat]
        simp
      · rw [List.concat_eq_append]
        by_cases before : index < splitPoint leaves.length
        · have lengths := ihTake index lower
          rw [List.length_take_of_le (Nat.le_of_lt bound)] at lengths
          simp [rebuildRoot_concat_of_lt_split several before,
            siblingPath_of_lt_split several before, lengths]
        · have behind := Nat.le_of_not_lt before
          have lengths := ihDrop (index - splitPoint leaves.length) lower
          rw [List.length_drop] at lengths
          simp [rebuildRoot_concat_of_split_le several behind,
            siblingPath_of_split_le several behind, lengths]

theorem rootFromInclusionProof_cases {index treeSize : Nat} (inside : index < treeSize)
    (leaf : Digest) (path : List Digest) :
    (∃ root, rebuildRoot leaf index treeSize path = some root ∧
        rootFromInclusionProof leaf index treeSize path = .ok root) ∨
      rebuildRoot leaf index treeSize path = none ∧
        rootFromInclusionProof leaf index treeSize path = .error .wrongPathLength := by
  rw [rootFromInclusionProof_eq_follow inside, ← toOption_follow_route]
  rcases inclusionAscent.follow_cases (route index treeSize) leaf path with ⟨root, reached⟩ | failed
  · rw [reached]
    exact .inl ⟨root, rfl, rfl⟩
  · rw [failed]
    exact .inr ⟨rfl, rfl⟩

theorem rootFromInclusionProof_wrongLength_iff (leaf : Digest) {index : Nat}
    {leaves path : List Digest} (inside : index < leaves.length) :
    rootFromInclusionProof leaf index leaves.length path = .error .wrongPathLength ↔
      path.length ≠ (siblingPath index leaves).length := by
  rw [ne_eq, ← isSome_rebuildRoot_iff leaf]
  rcases rootFromInclusionProof_cases inside leaf path with
    ⟨root, rebuilt, made⟩ | ⟨rebuilt, failed⟩
  · simp [rebuilt, made]
  · simp [rebuilt, failed]

/-- The climb comes to what the walk down the splits rebuilds, and refuses a path exactly if it has
not the length of the one that any leaves of that number make. So of the paths that differ in length
from one that is taken, cut short or drawn out, none is taken. -/
theorem rootFromInclusionProof_recursive {index treeSize : Nat} (inside : index < treeSize)
    (leaf : Digest) (path : List Digest) :
    (rootFromInclusionProof leaf index treeSize path =
      match rebuildRoot leaf index treeSize path with
      | some root => .ok root
      | none => .error .wrongPathLength) ∧
    (∀ leaves : List Digest, leaves.length = treeSize →
      (rootFromInclusionProof leaf index treeSize path = .error .wrongPathLength ↔
        path.length ≠ (siblingPath index leaves).length)) ∧
    ∀ root other, rootFromInclusionProof leaf index treeSize path = .ok root →
      other.length ≠ path.length →
      rootFromInclusionProof leaf index treeSize other = .error .wrongPathLength := by
  refine ⟨?_, ?_, ?_⟩
  · rcases rootFromInclusionProof_cases inside leaf path with
      ⟨root, rebuilt, made⟩ | ⟨rebuilt, failed⟩
    · rw [rebuilt, made]
    · rw [rebuilt, failed]
  · rintro leaves rfl
    exact rootFromInclusionProof_wrongLength_iff leaf inside
  · intro root other made differs
    -- The length that is called for is that of any leaves, so they may all be the same.
    obtain ⟨leaves, rfl⟩ : ∃ leaves : List Digest, leaves.length = treeSize :=
      ⟨List.replicate treeSize leaf, List.length_replicate⟩
    rcases rootFromInclusionProof_cases inside leaf path with ⟨_, rebuilt, -⟩ | ⟨-, failed⟩
    · have fits := (isSome_rebuildRoot_iff leaf index leaves path).mp (by rw [rebuilt]; rfl)
      rw [rootFromInclusionProof_wrongLength_iff leaf inside, ← fits]
      exact differs
    · rw [failed] at made
      cases made

theorem rootFromInclusionProof_recursive_raggedEdge :
    6 < 7 ∧
      rebuildRoot (hashLeaf [7]) 6 7 [hashLeaf [5], hashLeaf [1]] =
        some (hashChildren (hashLeaf [1]) (hashChildren (hashLeaf [5]) (hashLeaf [7]))) ∧
      rootFromInclusionProof (hashLeaf [7]) 6 7 [hashLeaf [5], hashLeaf [1]] =
        .ok (hashChildren (hashLeaf [1]) (hashChildren (hashLeaf [5]) (hashLeaf [7]))) ∧
      rootFromInclusionProof (hashLeaf [7]) 6 7 [hashLeaf [5]] = .error .wrongPathLength ∧
      (siblingPath 6 (List.replicate 7 (hashLeaf [0]))).length = 2 := by
  have inside : 6 < 7 := by decide
  obtain ⟨rebuilds, lengths, others⟩ := rootFromInclusionProof_recursive inside (hashLeaf [7])
    [hashLeaf [5], hashLeaf [1]]
  have seven : splitPoint 7 = 4 := by decide
  have three : splitPoint 3 = 2 := by decide
  have rebuilt : rebuildRoot (hashLeaf [7]) 6 7 [hashLeaf [5], hashLeaf [1]] =
      some (hashChildren (hashLeaf [1]) (hashChildren (hashLeaf [5]) (hashLeaf [7]))) := by
    simp [rebuildRoot, seven, three]
  rw [rebuilt] at rebuilds
  refine ⟨inside, rebuilt, rebuilds, others _ _ rebuilds (by decide), ?_⟩
  by_cases right : (siblingPath 6 (List.replicate 7 (hashLeaf [0]))).length = 2
  · exact right
  · rw [(lengths _ List.length_replicate).mpr (Ne.symm right)] at rebuilds
    cases rebuilds

/-! ### Consistency -/

/-- Both roots where the walk ends. The whole earlier tree has no hash in the path, as its root is
known; any other subtree has one. -/
def endRoots (firstRoot : Digest) : Bool → List Digest → Option (Digest × Digest)
  | true, [] => some (firstRoot, firstRoot)
  | false, [hash] => some (hash, hash)
  | _, _ => none

/-- The roots of the trees of `first` and of `second` leaves, if `path` has one hash for each split
on the way and what is needed where it ends. -/
def rebuildRoots (firstRoot : Digest) (first second : Nat) (isEarlierTree : Bool)
    (path : List Digest) : Option (Digest × Digest) :=
  if first = second then endRoots firstRoot isEarlierTree path
  else if _ : 2 ≤ second then
    let split := splitPoint second
    path.getLast?.bind fun sibling =>
      if first ≤ split then
        (rebuildRoots firstRoot first split isEarlierTree path.dropLast).map
          fun (earlier, later) => (earlier, hashChildren later sibling)
      else
        (rebuildRoots firstRoot (first - split) (second - split) false path.dropLast).map
          fun (earlier, later) => (hashChildren sibling earlier, hashChildren sibling later)
  else none
termination_by second
decreasing_by
  · exact splitPoint_lt (by omega)
  · have positive := splitPoint_pos second
    omega

theorem rebuildRoots_self (firstRoot : Digest) (count : Nat) (isEarlierTree : Bool)
    (path : List Digest) :
    rebuildRoots firstRoot count count isEarlierTree path =
      endRoots firstRoot isEarlierTree path := by
  rw [rebuildRoots, if_pos rfl]

theorem rebuildRoots_nil {first second : Nat} (inhabited : 0 < first) (smaller : first < second)
    (firstRoot : Digest) (isEarlierTree : Bool) :
    rebuildRoots firstRoot first second isEarlierTree [] = none := by
  rw [rebuildRoots, if_neg (by omega), dif_pos (by omega)]
  rfl

theorem rebuildRoots_concat_of_le_split {first second : Nat} (several : 2 ≤ second)
    (smaller : first < second) (within : first ≤ splitPoint second) (firstRoot : Digest)
    (isEarlierTree : Bool) (path : List Digest) (sibling : Digest) :
    rebuildRoots firstRoot first second isEarlierTree (path ++ [sibling]) =
      (rebuildRoots firstRoot first (splitPoint second) isEarlierTree path).map
        (consistencyAscent.join .right sibling) := by
  rw [rebuildRoots, if_neg (by omega), dif_pos several]
  simp only [List.getLast?_append, List.getLast?_singleton, Option.some_or, Option.bind_some,
    if_pos within, List.dropLast_concat]
  rfl

theorem rebuildRoots_concat_of_split_lt {first second : Nat} (smaller : first < second)
    (beyond : splitPoint second < first) (firstRoot : Digest) (isEarlierTree : Bool)
    (path : List Digest) (sibling : Digest) :
    rebuildRoots firstRoot first second isEarlierTree (path ++ [sibling]) =
      (rebuildRoots firstRoot (first - splitPoint second) (second - splitPoint second) false
        path).map (consistencyAscent.join .left sibling) := by
  have positive := splitPoint_pos second
  rw [rebuildRoots, if_neg (by omega), dif_pos (by omega)]
  simp only [List.getLast?_append, List.getLast?_singleton, Option.some_or, Option.bind_some,
    if_neg (Nat.not_le_of_lt beyond), List.dropLast_concat]
  rfl

def climbRoots (firstRoot : Digest) (isKnown : Bool) (sides : List Side) (path : List Digest) :
    Option (Digest × Digest) :=
  match isKnown, path with
  | true, path => (consistencyAscent.follow sides (firstRoot, firstRoot) path).toOption
  | false, [] => none
  | false, start :: rest => (consistencyAscent.follow sides (start, start) rest).toOption

theorem climbRoots_nil (firstRoot : Digest) (isKnown : Bool) (sides : List Side) (side : Side) :
    climbRoots firstRoot isKnown (sides ++ [side]) [] = none := by
  cases isKnown with
  | true =>
      rw [climbRoots, Ascent.follow_concat_nil]
      rfl
  | false => rfl

theorem climbRoots_concat (firstRoot : Digest) (isKnown : Bool) (sides : List Side) (side : Side)
    (path : List Digest) (sibling : Digest) :
    climbRoots firstRoot isKnown (sides ++ [side]) (path ++ [sibling]) =
      (climbRoots firstRoot isKnown sides path).map (consistencyAscent.join side sibling) := by
  cases isKnown with
  | true => exact consistencyAscent.toOption_follow_concat sides side _ path sibling
  | false =>
      cases path with
      | nil =>
          show (consistencyAscent.follow (sides ++ [side]) (sibling, sibling) []).toOption = none
          rw [Ascent.follow_concat_nil]
          rfl
      | cons start rest => exact consistencyAscent.toOption_follow_concat sides side _ rest sibling

/-- The walk down knows the root that it ends at exactly if the size of the earlier tree is a power
of two: only then does it keep to the left. -/
theorem climbRoots_growthRoute (firstRoot : Digest) {first second : Nat} (isEarlierTree : Bool)
    (inhabited : 0 < first) (within : first ≤ second)
    (whole : isEarlierTree = true → first = second → isPowerOfTwo first = true)
    (path : List Digest) :
    climbRoots firstRoot (isEarlierTree && isPowerOfTwo first) (growthRoute first second) path =
      rebuildRoots firstRoot first second isEarlierTree path := by
  induction second using Nat.strongRecOn generalizing first isEarlierTree path with
  | ind second ih =>
      by_cases all : first = second
      · subst all
        rw [growthRoute_self, rebuildRoots_self]
        cases isEarlierTree with
        | true =>
            rw [whole rfl rfl]
            cases path <;> rfl
        | false =>
            match path with
            | [] => rfl
            | [hash] => rfl
            | hash :: next :: rest => rfl
      · have smaller : first < second := by omega
        have bound := splitPoint_lt (show 2 ≤ second by omega)
        rcases List.eq_nil_or_concat path with rfl | ⟨lower, sibling, rfl⟩
        · obtain ⟨sides, side, isConcat⟩ := exists_growthRoute_concat inhabited smaller
          rw [rebuildRoots_nil inhabited smaller, isConcat, climbRoots_nil]
        · rw [List.concat_eq_append]
          by_cases inLeft : first ≤ splitPoint second
          · rw [growthRoute_of_le_split (by omega) smaller inLeft, climbRoots_concat,
              rebuildRoots_concat_of_le_split (by omega) smaller inLeft,
              ih _ bound isEarlierTree inhabited inLeft]
            intro _ isSplit
            exact isPowerOfTwo_iff.mpr ⟨_, isSplit.trans (splitPoint_eq_two_pow second)⟩
          · -- A power of two does not reach beyond the split, so from here on no root is known.
            have beyond : splitPoint second < first := by omega
            have notPower : isPowerOfTwo first = false := by
              rw [← Bool.not_eq_true, isPowerOfTwo_iff]
              rintro ⟨exponent, rfl⟩
              have inside := two_pow_le_splitPoint smaller
              omega
            rw [growthRoute_of_split_lt smaller beyond, climbRoots_concat, notPower,
              rebuildRoots_concat_of_split_lt smaller beyond, Bool.and_false]
            have positive := splitPoint_pos second
            have lowerRoots := ih (second - splitPoint second) (by omega) false
              (show 0 < first - splitPoint second by omega) (by omega) (by simp) lower
            rw [Bool.false_and] at lowerRoots
            rw [lowerRoots]

theorem isSome_endRoots_iff (firstRoot : Digest) (isEarlierTree : Bool) (path : List Digest) :
    (endRoots firstRoot isEarlierTree path).isSome = true ↔
      path.length = if isEarlierTree then 0 else 1 := by
  match isEarlierTree, path with
  | true, [] => simp [endRoots]
  | true, hash :: rest => simp [endRoots]
  | false, [] => simp [endRoots]
  | false, [hash] => simp [endRoots]
  | false, hash :: next :: rest => simp [endRoots]

theorem isSome_rebuildRoots_iff (firstRoot : Digest) {first : Nat} (isEarlierTree : Bool)
    (leaves path : List Digest) (inhabited : 0 < first) (within : first ≤ leaves.length) :
    (rebuildRoots firstRoot first leaves.length isEarlierTree path).isSome = true ↔
      path.length = (growthPath first leaves isEarlierTree).length := by
  induction leaves using split_induction generalizing first isEarlierTree path with
  | small leaves few =>
      obtain rfl : first = leaves.length := by omega
      rw [rebuildRoots_self, growthPath_self, isSome_endRoots_iff]
      cases isEarlierTree <;> rfl
  | split leaves several ihTake ihDrop =>
      by_cases all : first = leaves.length
      · subst all
        rw [rebuildRoots_self, growthPath_self, isSome_endRoots_iff]
        cases isEarlierTree <;> rfl
      · have smaller : first < leaves.length := by omega
        have bound := splitPoint_lt several
        rcases List.eq_nil_or_concat path with rfl | ⟨lower, sibling, rfl⟩
        · obtain ⟨rest, last, isConcat⟩ := exists_growthPath_concat inhabited smaller isEarlierTree
          rw [rebuildRoots_nil inhabited smaller, isConcat]
          simp
        · rw [List.concat_eq_append]
          by_cases inTake : first ≤ splitPoint leaves.length
          · have takeLength := List.length_take_of_le (Nat.le_of_lt bound)
            have lengths := ihTake isEarlierTree lower inhabited (by rw [takeLength]; exact inTake)
            rw [takeLength] at lengths
            simp [rebuildRoots_concat_of_le_split several smaller inTake,
              growthPath_of_le_split several smaller inTake, lengths]
          · have beyond : splitPoint leaves.length < first := by omega
            have lengths := @ihDrop (first - splitPoint leaves.length) false lower (by omega)
              (by rw [List.length_drop]; omega)
            rw [List.length_drop] at lengths
            simp [rebuildRoots_concat_of_split_lt smaller beyond,
              growthPath_of_split_lt smaller beyond, lengths]

theorem climbRoots_eq_bind (first : Nat) (firstRoot : Digest) (sides : List Side)
    (path : List Digest) :
    climbRoots firstRoot (isPowerOfTwo first) sides path =
      (consistencyStart first firstRoot path).bind fun (start, rest) =>
        (consistencyAscent.follow sides (start, start) rest).toOption := by
  cases path with
  | nil => cases power : isPowerOfTwo first <;> simp [consistencyStart, climbRoots, power]
  | cons head tail =>
      cases power : isPowerOfTwo first <;> simp [consistencyStart, climbRoots, power]

theorem verifyConsistency_cases {first second : Nat} (inhabited : 0 < first)
    (smaller : first < second) (firstRoot secondRoot : Digest) (path : List Digest) :
    (∃ roots, rebuildRoots firstRoot first second true path = some roots ∧
        verifyConsistency first second firstRoot secondRoot path =
          if roots = (firstRoot, secondRoot) then .ok () else .error .rootMismatch) ∨
      rebuildRoots firstRoot first second true path = none ∧
        verifyConsistency first second firstRoot secondRoot path = .error .wrongPathLength := by
  have climbed := climbRoots_growthRoute firstRoot true inhabited (Nat.le_of_lt smaller)
    (fun _ same => absurd same (Nat.ne_of_lt smaller)) path
  rw [Bool.true_and, climbRoots_eq_bind] at climbed
  rw [verifyConsistency_eq_follow inhabited smaller, ← climbed]
  cases consistencyStart first firstRoot path with
  | none => exact .inr ⟨rfl, rfl⟩
  | some begin =>
      obtain ⟨start, rest⟩ := begin
      simp only [Option.bind_some]
      rcases consistencyAscent.follow_cases (growthRoute first second) (start, start) rest with
        ⟨roots, reached⟩ | failed
      · rw [reached]
        exact .inl ⟨roots, rfl, rfl⟩
      · rw [failed]
        exact .inr ⟨rfl, rfl⟩

theorem verifyConsistency_wrongLength_iff {first : Nat} {leaves path : List Digest}
    (inhabited : 0 < first) (smaller : first < leaves.length) (firstRoot secondRoot : Digest) :
    verifyConsistency first leaves.length firstRoot secondRoot path = .error .wrongPathLength ↔
      path.length ≠ (growthPath first leaves true).length := by
  rw [ne_eq, ← isSome_rebuildRoots_iff firstRoot true leaves path inhabited (Nat.le_of_lt smaller)]
  rcases verifyConsistency_cases inhabited smaller firstRoot secondRoot path with
    ⟨roots, rebuilt, checked⟩ | ⟨rebuilt, failed⟩
  · rw [rebuilt, checked]
    split <;> simp
  · simp [rebuilt, failed]

/-- The climb folds both roots into what the walk down the splits rebuilds, accepts them if they are
the two that are given, and refuses a path for its length exactly if it has not that of the one that
any leaves of that number make. -/
theorem verifyConsistency_recursive {first second : Nat} (inhabited : 0 < first)
    (smaller : first < second) (firstRoot secondRoot : Digest) (path : List Digest) :
    (verifyConsistency first second firstRoot secondRoot path =
      match rebuildRoots firstRoot first second true path with
      | some roots => if roots = (firstRoot, secondRoot) then .ok () else .error .rootMismatch
      | none => .error .wrongPathLength) ∧
    ∀ leaves : List Digest, leaves.length = second →
      (verifyConsistency first second firstRoot secondRoot path = .error .wrongPathLength ↔
        path.length ≠ (growthPath first leaves true).length) := by
  constructor
  · rcases verifyConsistency_cases inhabited smaller firstRoot secondRoot path with
      ⟨roots, rebuilt, checked⟩ | ⟨rebuilt, failed⟩
    · rw [rebuilt, checked]
    · rw [rebuilt, failed]
  · rintro leaves rfl
    exact verifyConsistency_wrongLength_iff inhabited smaller firstRoot secondRoot

theorem verifyConsistency_recursive_raggedSizes :
    0 < 3 ∧ 3 < 7 ∧ 0 < 4 ∧ 4 < 7 ∧
      verifyConsistency 3 7 (hashChildren (hashLeaf [1]) (hashLeaf [3]))
        (hashChildren (hashChildren (hashLeaf [1]) (hashChildren (hashLeaf [3]) (hashLeaf [4])))
          (hashLeaf [5])) [hashLeaf [3], hashLeaf [4], hashLeaf [1], hashLeaf [5]] = .ok () ∧
      verifyConsistency 4 7 (hashLeaf [1]) (hashChildren (hashLeaf [1]) (hashLeaf [5]))
        [hashLeaf [5]] = .ok () ∧
      verifyConsistency 4 7 (hashLeaf [1]) (hashChildren (hashLeaf [1]) (hashLeaf [5]))
        [hashLeaf [1], hashLeaf [5]] = .error .wrongPathLength ∧
      (growthPath 4 (List.replicate 7 (hashLeaf [0])) true).length = 1 := by
  have seven : splitPoint 7 = 4 := by decide
  have four : splitPoint 4 = 2 := by decide
  have fromThree (pair third fourth rest : Digest) :
      verifyConsistency 3 7 (hashChildren pair third)
        (hashChildren (hashChildren pair (hashChildren third fourth)) rest)
        [third, fourth, pair, rest] = .ok () := by
    rw [(verifyConsistency_recursive (by decide) (by decide) _ _ _).1]
    simp [rebuildRoots, endRoots, seven, four, splitPoint_two]
  have fromFour (firstRoot rest : Digest) :
      verifyConsistency 4 7 firstRoot (hashChildren firstRoot rest) [rest] = .ok () := by
    rw [(verifyConsistency_recursive (by decide) (by decide) _ _ _).1]
    simp [rebuildRoots, endRoots, seven]
  have tooLong (firstRoot rest : Digest) :
      verifyConsistency 4 7 firstRoot (hashChildren firstRoot rest) [firstRoot, rest] =
        .error .wrongPathLength := by
    rw [(verifyConsistency_recursive (by decide) (by decide) _ _ _).1]
    simp [rebuildRoots, endRoots, seven]
  have lengths := (@verifyConsistency_recursive 4 7 (by decide) (by decide) (hashLeaf [1])
    (hashChildren (hashLeaf [1]) (hashLeaf [5])) [hashLeaf [5]]).2
    (List.replicate 7 (hashLeaf [0])) List.length_replicate
  rw [fromFour] at lengths
  exact ⟨by decide, by decide, by decide, by decide, fromThree _ _ _ _, fromFour _ _, tooLong _ _,
    by simpa [eq_comm] using lengths⟩

end VerifiableLog.Merkle
